import Mathlib.Algebra.BigOperators.Fin
import PqSuite.Lib.Reach
import PqSuite.Protocol.Codecs
import PqSuite.Server.FileServer

/-!
# Runs of the file server

Whatever the connections, the cleanup thread and restarts do one after the other: a directory is held by
one of them or by the registry, which is why nobody removes a transfer under another's hands; a transfer
that is marked as downloading is downloaded by exactly one connection; and the reserved bytes are those of
the registered transfers and of the uploads under way.
-/

namespace PqSuite.FileServer

open FileProtocol

namespace Conn

def reservation : Conn → ℕ
  | reserved header bytes | opened _ header bytes | receiving _ header bytes _ =>
    storageCost header bytes.length
  | aborting _ reserve => reserve
  | _ => 0

/-- The directory that a connection works on, or removes. -/
def dir : Conn → Option Bytes
  | opened id _ _ | receiving id _ _ _ | removing id => some id
  | aborting dir _ => dir
  | _ => none

/-- The directory of an upload that has not been undone. -/
def uploads : Conn → Option Bytes
  | opened id _ _ | receiving id _ _ _ => some id
  | aborting dir _ => dir
  | _ => none

def download : Conn → Option Bytes
  | sending t _ _ | awaiting t | confirmed t => some t.id
  | releasing id => some id
  | _ => none

def Sound : Conn → Prop
  | reserved header bytes | opened _ header bytes | receiving _ header bytes _ =>
    deserializeFileHeader bytes = some header
  | _ => True

end Conn

variable {n : ℕ}

structure SameClaims (c c' : Conn) : Prop where
  reservation : c'.reservation = c.reservation
  dir : c'.dir = c.dir
  uploads : c'.uploads = c.uploads
  download : c'.download = c.download
  sound : c.Sound → c'.Sound

/-- Files of a directory change: its name stays, and of the header there is what was there, nothing, or a
beginning of what the upload writes. -/
structure Rewrites (c : Conn) (id : Bytes) (f : Directory → Directory) : Prop where
  name : ∀ d, (f d).name = d.name
  reservation : ∀ d, (f d).reservation = d.reservation
  header : ∀ d, (f d).header = d.header ∨ (f d).header = none ∨
    ∃ header bytes k, c = .opened id header bytes ∧ (f d).header = some (bytes.take k)

inductive Effect (quota : ℕ) (w : World n) : Event n → World n → Prop
  | keep {e : Event n} : Effect quota w e w
  | moves {e : Event n} {i : Fin n} {c : Conn} (hsame : SameClaims (w.conns i) c) :
      Effect quota w e (w.setConn i c)
  | writes {e : Event n} {i : Fin n} {c : Conn} {id : Bytes} {f : Directory → Directory}
      (hid : (w.conns i).dir = some id) (hsame : SameClaims (w.conns i) c)
      (hf : Rewrites (w.conns i) id f) : Effect quota w e ((w.updateDir id f).setConn i c)
  | reserves {e : Event n} {i : Fin n} {header : FileHeader} {bytes : Bytes} (hi : w.conns i = .idle)
      (hbytes : deserializeFileHeader bytes = some header)
      (hroom : w.reserved + storageCost header bytes.length ≤ quota) :
      Effect quota w e (({ w with reserved := w.reserved + storageCost header bytes.length } :
        World n).setConn i (.reserved header bytes))
  | makes {e : Event n} {i : Fin n} {id : Bytes} {header : FileHeader} {bytes : Bytes}
      (hi : w.conns i = .reserved header bytes) (hnew : ∀ d ∈ w.disk, d.name ≠ id) :
      Effect quota w e (({ w with disk := w.disk ++
        [{ name := id, reservation := storageCost header bytes.length }] } : World n).setConn i
          (.opened id header bytes))
  | registers {e : Event n} {i : Fin n} {id : Bytes} {header : FileHeader} {bytes : Bytes}
      {received : List ℕ} {now : Time} (hi : w.conns i = .receiving id header bytes received) :
      Effect quota w e (({ w with transfers := w.transfers.filter (·.id ≠ id) ++
        [⟨id, header, now, storageCost header bytes.length, false⟩] } : World n).setConn i .idle)
  | aborts {e : Event n} {i : Fin n} {dir : Option Bytes} {reserve : ℕ}
      (hi : w.conns i = .aborting dir reserve) : Effect quota w e (w.abort i dir reserve)
  | removes {e : Event n} {i : Fin n} {dir : Bytes} (gone : Bool) (hi : w.conns i = .removing dir) :
      Effect quota w e ((if gone then w.removeDir dir else w).setConn i .idle)
  | claims {e : Event n} {i : Fin n} {t : StoredTransfer} (hi : w.conns i = .idle)
      (ht : w.findTransfer t.id = some t) (hfree : t.downloading = false) :
      Effect quota w e ((w.setDownloading t.id true).setConn i
        (.sending { t with downloading := true } false 0))
  | finishes {i : Fin n} {t : StoredTransfer} (hi : w.conns i = .confirmed t) :
      Effect quota w (.finish i) (w.finish i t)
  | releases {i : Fin n} {id : Bytes} (hi : w.conns i = .releasing id) :
      Effect quota w (.release i) (w.release i id)
  | expires {now : Time} (hcleaner : w.cleaner = []) : Effect quota w (.expire now) (w.expire now)
  | cleanerWrites {e : Event n} {dir : Bytes} {file : FileName} (hdir : dir ∈ w.cleaner) :
      Effect quota w e (w.updateDir dir (·.unlink file))
  | cleans {e : Event n} {dir : Bytes} {rest : List Bytes} (gone : Bool)
      (hcleaner : w.cleaner = dir :: rest) :
      Effect quota w e { (if gone then w.removeDir dir else w) with cleaner := rest }
  | restarts {now : Time} {age : Bytes → Time} {left : Bytes → Option (List FileName)} :
      Effect quota w (.restart now age left) (w.restart now age left)

section

variable {quota : ℕ} {w w' : World n} {replies : List Reply} {header : FileHeader} {e : Event n}
  {i : Fin n} {bytes id : Bytes} {received : List ℕ}

theorem SameClaims.abort (hi : w.conns i = .receiving id header bytes received) :
    SameClaims (w.conns i) (.aborting (some id) (storageCost header bytes.length)) := by
  rw [hi]
  exact ⟨rfl, rfl, rfl, rfl, fun _ => trivial⟩

theorem SameClaims.abortReserved (hi : w.conns i = .reserved header bytes) :
    SameClaims (w.conns i) (.aborting none (storageCost header bytes.length)) := by
  rw [hi]
  exact ⟨rfl, rfl, rfl, rfl, fun _ => trivial⟩

theorem effect_uploadRequest (hi : w.conns i = .idle) :
    Effect quota w e (w.uploadRequest quota i bytes).1 := by
  unfold World.uploadRequest
  split
  · exact .keep
  · rename_i header hbytes
    simp only
    split_ifs with hvalid hfull
    · exact .keep
    · exact .keep
    · exact .reserves hi hbytes (not_lt.1 hfull)

theorem effect_makeDirectory (hi : w.conns i = .reserved header bytes) :
    Effect quota w e (w.makeDirectory i id header bytes).1 := by
  unfold World.makeDirectory
  split_ifs with hdir
  · exact .moves (.abortReserved hi)
  · refine .makes hi fun d hd hname => hdir ?_
    exact Rows.lookup_isSome.2 ⟨d, hd, hname⟩

theorem rewrites_chunks (c : Conn) (id : Bytes) (f : (ℕ → Option Bytes) → ℕ → Option Bytes) :
    Rewrites c id fun d => { d with chunks := f d.chunks } :=
  ⟨fun _ => rfl, fun _ => rfl, fun _ => .inl rfl⟩

theorem rewrites_unlink (c : Conn) (id : Bytes) (file : FileName) : Rewrites c id (·.unlink file) := by
  cases file with
  | header => exact ⟨fun _ => rfl, fun _ => rfl, fun _ => .inr (.inl rfl)⟩
  | chunk index => exact ⟨fun _ => rfl, fun _ => rfl, fun _ => .inl rfl⟩

theorem rewrites_header (id : Bytes) (header : FileHeader) (bytes : Bytes) (result : WriteResult) :
    Rewrites (.opened id header bytes) id fun d => { d with header := result.content bytes d.header } := by
  refine ⟨fun _ => rfl, fun _ => rfl, fun d => ?_⟩
  cases result with
  | ok => exact .inr (.inr ⟨header, bytes, bytes.length, rfl, by simp [WriteResult.content]⟩)
  | cannotOpen => exact .inl rfl
  | cut written => exact .inr (.inr ⟨header, bytes, written, rfl, rfl⟩)

theorem effect_writeHeader (hi : w.conns i = .opened id header bytes) (result : WriteResult) :
    Effect quota w e (w.writeHeader i id header bytes result).1 := by
  have hid : (w.conns i).dir = some id := by rw [hi]; rfl
  have hf := rewrites_header id header bytes result
  rw [← hi] at hf
  have habort : SameClaims (w.conns i) (.aborting (some id) (storageCost header bytes.length)) := by
    rw [hi]
    exact ⟨rfl, rfl, rfl, rfl, fun _ => trivial⟩
  have hgo : SameClaims (w.conns i) (.receiving id header bytes []) := by
    rw [hi]
    exact ⟨rfl, rfl, rfl, rfl, fun hsound => hsound⟩
  unfold World.writeHeader
  cases result with
  | ok => exact .writes hid hgo hf
  | cannotOpen => exact .writes hid habort hf
  | cut written => exact .writes hid habort hf

theorem effect_uploadChunk (hi : w.conns i = .receiving id header bytes received) (payload : Bytes)
    (result : WriteResult) :
    Effect quota w e (w.uploadChunk i id header bytes received payload result).1 := by
  have hid : (w.conns i).dir = some id := by rw [hi]; rfl
  unfold World.uploadChunk
  simp only
  split
  · exact .moves (.abort hi)
  rename_i chunk hchunk
  split_ifs with hindex hsize
  · exact .moves (.abort hi)
  · exact .moves (.abort hi)
  have hf := rewrites_chunks (w.conns i) id fun chunks => Function.update chunks chunk.chunkIndex.toNat
    (result.content chunk.data (chunks chunk.chunkIndex.toNat))
  cases result with
  | ok =>
    refine .writes hid ?_ hf
    rw [hi]
    exact ⟨rfl, rfl, rfl, rfl, fun hsound => hsound⟩
  | cannotOpen => exact .writes hid (.abort hi) hf
  | cut written => exact .writes hid (.abort hi) hf

theorem effect_uploadDone (hi : w.conns i = .receiving id header bytes received) (now : Time) :
    Effect quota w e (w.uploadDone i id header bytes received now).1 := by
  unfold World.uploadDone
  split_ifs
  · exact .moves (.abort hi)
  · exact .registers hi

theorem effect_downloadRequest {payload : Bytes} (hi : w.conns i = .idle) :
    Effect quota w e (w.downloadRequest i payload).1 := by
  unfold World.downloadRequest
  by_cases hhex : ¬isLowerHex payload transferIdHexLen = true
  · rw [if_pos hhex]
    exact .keep
  rw [if_neg hhex]
  split
  · exact .keep
  · rename_i t ht
    obtain rfl : t.id = payload := (Rows.lookup_eq_some ht).2
    split_ifs with hbusy
    · exact .keep
    · exact .claims hi ht (by simpa using hbusy)

theorem effect_sendNext {t : StoredTransfer} {headerSent : Bool} {index : ℕ}
    (hi : w.conns i = .sending t headerSent index) :
    Effect quota w e (w.sendNext i t headerSent index).1 := by
  have hsame : ∀ {c : Conn}, SameClaims (.sending t headerSent index) c → SameClaims (w.conns i) c :=
    fun h => hi ▸ h
  unfold World.sendNext
  dsimp only
  repeat' split
  all_goals exact .moves (hsame ⟨rfl, rfl, rfl, rfl, fun _ => trivial⟩)

theorem effect_next (h : w.next quota e = some (w', replies)) : Effect quota w e w' := by
  have hdone : ∀ {p : World n × List Reply}, some p = some (w', replies) → Effect quota w e p.1 →
      Effect quota w e w' := by
    rintro p hp heffect
    obtain rfl := Option.some.inj hp
    exact heffect
  cases e with
  | uploadRequest i bytes =>
    simp only [World.next] at h
    split at h
    · rename_i hi
      split_ifs at h
      exact hdone h (effect_uploadRequest hi)
    · exact nomatch h
  | noId i =>
    simp only [World.next] at h
    split at h
    · rename_i hi
      exact hdone h (.moves (.abortReserved hi))
    · exact nomatch h
  | makeDirectory i id =>
    simp only [World.next] at h
    split at h
    · rename_i hi
      exact hdone h (effect_makeDirectory hi)
    · exact nomatch h
  | cannotMake i =>
    simp only [World.next] at h
    split at h
    · rename_i hi
      exact hdone h (.moves (.abortReserved hi))
    · exact nomatch h
  | writeHeader i result =>
    simp only [World.next] at h
    split at h
    · rename_i hi
      exact hdone h (effect_writeHeader hi result)
    · exact nomatch h
  | uploadChunk i payload result =>
    simp only [World.next] at h
    split at h
    · rename_i hi
      exact hdone h (effect_uploadChunk hi payload result)
    · exact nomatch h
  | uploadDone i now =>
    simp only [World.next] at h
    split at h
    · rename_i hi
      exact hdone h (effect_uploadDone hi now)
    · exact nomatch h
  | unexpected i =>
    simp only [World.next] at h
    split at h
    · rename_i hi
      exact hdone h (.moves (.abort hi))
    · exact nomatch h
  | hangUp i =>
    simp only [World.next] at h
    split at h
    · rename_i hi
      exact hdone h (.moves (.abort hi))
    · rename_i hi
      refine hdone h (.moves ?_)
      rw [hi]
      exact ⟨rfl, rfl, rfl, rfl, fun _ => trivial⟩
    · rename_i hi
      refine hdone h (.moves ?_)
      rw [hi]
      exact ⟨rfl, rfl, rfl, rfl, fun _ => trivial⟩
    · exact nomatch h
  | abort i =>
    simp only [World.next] at h
    split at h
    · rename_i hi
      exact hdone h (.aborts hi)
    · exact nomatch h
  | unlink i file =>
    simp only [World.next] at h
    split at h
    · rename_i dir hi
      refine hdone h ?_
      have hwrites : Effect quota w (.unlink i file)
          ((w.updateDir dir (·.unlink file)).setConn i (w.conns i)) :=
        .writes (by rw [hi]; rfl) ⟨rfl, rfl, rfl, rfl, fun hsound => hsound⟩ (rewrites_unlink _ _ _)
      have hsame : (w.updateDir dir (·.unlink file)).setConn i (w.conns i) =
          w.updateDir dir (·.unlink file) := by
        simp [World.setConn, World.updateDir]
      rwa [hsame] at hwrites
    · exact nomatch h
  | removed i gone =>
    simp only [World.next] at h
    split at h
    · rename_i hi
      exact hdone h (.removes gone hi)
    · exact nomatch h
  | downloadRequest i payload =>
    simp only [World.next] at h
    split at h
    · rename_i hi
      exact hdone h (effect_downloadRequest hi)
    · exact nomatch h
  | sendNext i =>
    simp only [World.next] at h
    split at h
    · rename_i hi
      exact hdone h (effect_sendNext hi)
    · exact nomatch h
  | answer i ack =>
    simp only [World.next] at h
    split at h
    · rename_i hi
      refine hdone h (.moves ?_)
      rw [hi]
      cases ack with
      | true => exact ⟨rfl, rfl, rfl, rfl, fun hsound => hsound⟩
      | false => exact ⟨rfl, rfl, rfl, rfl, fun _ => trivial⟩
    · exact nomatch h
  | finish i =>
    simp only [World.next] at h
    split at h
    · rename_i hi
      exact hdone h (.finishes hi)
    · exact nomatch h
  | release i =>
    simp only [World.next] at h
    split at h
    · rename_i hi
      exact hdone h (.releases hi)
    · exact nomatch h
  | expire now =>
    simp only [World.next] at h
    split_ifs at h with hcleaner
    exact hdone h (.expires hcleaner)
  | cleanerUnlink file =>
    simp only [World.next] at h
    split at h
    · rename_i hcleaner
      exact hdone h (.cleanerWrites (by rw [hcleaner]; exact List.mem_cons_self))
    · exact nomatch h
  | cleanerRemoved gone =>
    simp only [World.next] at h
    split at h
    · rename_i hcleaner
      exact hdone h (.cleans gone hcleaner)
    · exact nomatch h
  | restart now age left => exact hdone h .restarts

end

/-! ## Who holds a directory -/

inductive Holder (n : ℕ) where
  | registry
  | conn (i : Fin n)
  | cleaner

namespace World

def Holds (w : World n) : Holder n → Bytes → Prop
  | .registry, id => ∃ t ∈ w.transfers, t.id = id
  | .conn i, id => (w.conns i).dir = some id
  | .cleaner, id => id ∈ w.cleaner

def OnDisk (w : World n) (id : Bytes) : Prop := ∃ d ∈ w.disk, d.name = id

/-- Every directory that somebody holds is there, and nobody else holds it. -/
structure Owned (w : World n) : Prop where
  ids : (w.transfers.map (·.id)).Nodup
  names : (w.disk.map (·.name)).Nodup
  cleaner : w.cleaner.Nodup
  onDisk : ∀ h id, w.Holds h id → w.OnDisk id
  exclusive : ∀ h h' id, w.Holds h id → w.Holds h' id → h = h'

end World

section

variable {quota : ℕ} {w w' : World n} {i : Fin n} {c : Conn} {id : Bytes}

@[simp]
theorem setConn_transfers : (w.setConn i c).transfers = w.transfers := rfl

@[simp]
theorem setConn_reserved : (w.setConn i c).reserved = w.reserved := rfl

@[simp]
theorem setConn_disk : (w.setConn i c).disk = w.disk := rfl

@[simp]
theorem setConn_cleaner : (w.setConn i c).cleaner = w.cleaner := rfl

@[simp]
theorem setConn_startup : (w.setConn i c).startup = w.startup := rfl

@[simp]
theorem setConn_conns_self : (w.setConn i c).conns i = c := by simp [World.setConn]

theorem setConn_conns_of_ne {j : Fin n} (h : j ≠ i) : (w.setConn i c).conns j = w.conns j := by
  simp [World.setConn, h]

/-- What anyone holds after a connection went on: the same, but for that connection. -/
theorem holds_setConn {h : Holder n} (hholds : (w.setConn i c).Holds h id) :
    (h = .conn i ∧ c.dir = some id) ∨ (h ≠ .conn i ∧ w.Holds h id) := by
  cases h with
  | registry | cleaner => exact .inr ⟨nofun, hholds⟩
  | conn j =>
    by_cases hj : j = i
    · subst hj
      exact .inl ⟨rfl, by simpa [World.Holds] using hholds⟩
    · refine .inr ⟨fun heq => hj (Holder.conn.inj heq), ?_⟩
      rw [World.Holds, setConn_conns_of_ne hj] at hholds
      exact hholds

/-- A connection goes on with no other directory than before. -/
theorem holds_setConn_of_dir (hdir : ∀ id, c.dir = some id → (w.conns i).dir = some id) {h : Holder n}
    (hholds : (w.setConn i c).Holds h id) : w.Holds h id := by
  rcases holds_setConn hholds with ⟨rfl, hc⟩ | ⟨-, hold⟩
  · exact hdir id hc
  · exact hold

namespace World.Owned

/-- Nobody holds more than before, and no directory that is held goes. -/
theorem mono (h : w.Owned) (hids : (w'.transfers.map (·.id)).Nodup)
    (hnames : (w'.disk.map (·.name)).Nodup) (hcleaner : w'.cleaner.Nodup)
    (hholds : ∀ g id, w'.Holds g id → w.Holds g id ∧ (w.OnDisk id → w'.OnDisk id)) : w'.Owned where
  ids := hids
  names := hnames
  cleaner := hcleaner
  onDisk g id hg := (hholds g id hg).2 (h.onDisk g id (hholds g id hg).1)
  exclusive g g' id hg hg' := h.exclusive g g' id (hholds g id hg).1 (hholds g' id hg').1

/-- A directory changes hands: after it one holder has it, and all others are held as before. -/
theorem passes (h : w.Owned) (id₀ : Bytes) (g₀ : Holder n) (hids : (w'.transfers.map (·.id)).Nodup)
    (hnames : (w'.disk.map (·.name)).Nodup) (hcleaner : w'.cleaner.Nodup) (hon : w'.OnDisk id₀)
    (hdisk : ∀ id, w.OnDisk id → w'.OnDisk id)
    (hother : ∀ g id, id ≠ id₀ → w'.Holds g id → w.Holds g id)
    (hself : ∀ g, w'.Holds g id₀ → g = g₀) : w'.Owned where
  ids := hids
  names := hnames
  cleaner := hcleaner
  onDisk g id hg := by
    by_cases hid : id = id₀
    · exact hid ▸ hon
    · exact hdisk id (h.onDisk g id (hother g id hid hg))
  exclusive g g' id hg hg' := by
    by_cases hid : id = id₀
    · subst hid
      rw [hself g hg, hself g' hg']
    · exact h.exclusive g g' id (hother g id hid hg) (hother g' id hid hg')

end World.Owned

end

section

variable {quota : ℕ} {w w' : World n} {i : Fin n} {c : Conn} {id : Bytes} {id' : Bytes}

theorem updateDir_names {f : Directory → Directory} (hf : ∀ d, (f d).name = d.name) :
    (w.updateDir id f).disk.map (·.name) = w.disk.map (·.name) := by
  rw [World.updateDir, List.map_map]
  refine List.map_congr_left fun d _ => ?_
  show (if d.name = id then f d else d).name = d.name
  split_ifs
  · exact hf d
  · rfl

theorem onDisk_iff : w.OnDisk id ↔ id ∈ w.disk.map (·.name) := by
  simp [World.OnDisk]

theorem onDisk_updateDir {f : Directory → Directory} (hf : ∀ d, (f d).name = d.name) :
    (w.updateDir id f).OnDisk id' ↔ w.OnDisk id' := by
  rw [onDisk_iff, onDisk_iff, updateDir_names hf]

theorem onDisk_removeDir (hne : id' ≠ id) (h : w.OnDisk id') : (w.removeDir id).OnDisk id' := by
  obtain ⟨d, hd, rfl⟩ := h
  exact ⟨d, List.mem_filter.2 ⟨hd, decide_eq_true hne⟩, rfl⟩

theorem removeDir_names_nodup (h : (w.disk.map (·.name)).Nodup) :
    ((w.removeDir id).disk.map (·.name)).Nodup := h.sublist (List.filter_sublist.map _)

theorem setDownloading_ids (downloading : Bool) :
    (w.setDownloading id downloading).transfers.map (·.id) = w.transfers.map (·.id) := by
  rw [World.setDownloading, List.map_map]
  refine List.map_congr_left fun t _ => ?_
  show (if t.id = id then { t with downloading } else t).id = t.id
  split_ifs <;> rfl

theorem holds_registry_iff : w.Holds .registry id ↔ id ∈ w.transfers.map (·.id) := by
  simp [World.Holds]

theorem holds_setDownloading {downloading : Bool} {g : Holder n} :
    (w.setDownloading id downloading).Holds g id' ↔ w.Holds g id' := by
  cases g with
  | registry => rw [holds_registry_iff, holds_registry_iff, setDownloading_ids]
  | conn j => rfl
  | cleaner => rfl

namespace World.Owned

theorem setConn (h : w.Owned) (hdir : ∀ id, c.dir = some id → (w.conns i).dir = some id) :
    (w.setConn i c).Owned :=
  h.mono h.ids h.names h.cleaner fun _ _ hg => ⟨holds_setConn_of_dir hdir hg, fun hon => hon⟩

theorem updateDir (h : w.Owned) {f : Directory → Directory} (hf : ∀ d, (f d).name = d.name) :
    (w.updateDir id f).Owned :=
  h.mono h.ids (by rw [updateDir_names hf]; exact h.names) h.cleaner fun g _ hg =>
    ⟨by cases g <;> exact hg, (onDisk_updateDir hf).2⟩

theorem withReserved (h : w.Owned) (reserved : ℕ) : World.Owned { w with reserved := reserved } :=
  h.mono h.ids h.names h.cleaner fun g _ hg => ⟨by cases g <;> exact hg, fun hon => hon⟩

theorem setDownloading (h : w.Owned) (downloading : Bool) : (w.setDownloading id downloading).Owned :=
  h.mono ((setDownloading_ids downloading).symm ▸ h.ids) h.names h.cleaner fun _ _ hg =>
    ⟨holds_setDownloading.1 hg, fun hon => hon⟩

theorem makes (h : w.Owned) {header : FileHeader} {bytes : Bytes} {reservation : ℕ}
    (hnew : ∀ d ∈ w.disk, d.name ≠ id) :
    (({ w with disk := w.disk ++ [{ name := id, reservation := reservation }] } : World n).setConn i
      (.opened id header bytes)).Owned := by
  refine h.passes id (.conn i) h.ids ?_ h.cleaner ⟨_, List.mem_append_right _ List.mem_cons_self, rfl⟩ ?_
    (fun g id' hne hg => ?_) fun g hg => ?_
  · show ((w.disk ++ [_]).map Directory.name).Nodup
    exact Rows.nodup_concat h.names hnew
  · rintro id' ⟨d, hd, hname⟩
    exact ⟨d, List.mem_append_left _ hd, hname⟩
  · rcases holds_setConn hg with ⟨-, hdir⟩ | ⟨-, hold⟩
    · exact absurd (Option.some.inj hdir).symm hne
    · cases g <;> exact hold
  · rcases holds_setConn hg with ⟨hconn, -⟩ | ⟨-, hold⟩
    · exact hconn
    · obtain ⟨d, hd, hname⟩ := h.onDisk g id (by cases g <;> exact hold)
      exact absurd hname (hnew d hd)

theorem registers (h : w.Owned) {t : StoredTransfer} (hdir : (w.conns i).dir = some t.id) :
    (({ w with transfers := w.transfers.filter (·.id ≠ t.id) ++ [t] } : World n).setConn i .idle).Owned := by
  have hheld : w.Holds (.conn i) t.id := hdir
  have hregistry : ∀ id', id' ≠ t.id →
      (∃ r ∈ w.transfers.filter (·.id ≠ t.id) ++ [t], r.id = id') → w.Holds .registry id' := by
    rintro id' hne ⟨r, hr, rfl⟩
    rcases List.mem_append.1 hr with hold | hlast
    · exact ⟨r, (List.mem_filter.1 hold).1, rfl⟩
    · exact absurd (congrArg StoredTransfer.id (List.mem_singleton.1 hlast)) hne
  refine h.passes t.id .registry ?_ h.names h.cleaner (h.onDisk _ _ hheld) (fun _ hon => hon)
    (fun g id' hne hg => ?_) fun g hg => ?_
  · show ((w.transfers.filter (·.id ≠ t.id) ++ [t]).map (·.id)).Nodup
    exact Rows.nodup_concat (h.ids.sublist (List.filter_sublist.map _)) fun r hr =>
      of_decide_eq_true (List.mem_filter.1 hr).2
  · rcases holds_setConn hg with ⟨-, hidle⟩ | ⟨-, hold⟩
    · exact nomatch hidle
    · cases g with
      | registry => exact hregistry id' hne hold
      | conn j => exact hold
      | cleaner => exact hold
  · rcases holds_setConn hg with ⟨-, hidle⟩ | ⟨hg', hold⟩
    · exact nomatch hidle
    · cases g with
      | registry => rfl
      | conn j => exact absurd (h.exclusive (.conn j) (.conn i) t.id hold hheld) hg'
      | cleaner => exact absurd (h.exclusive .cleaner (.conn i) t.id hold hheld) nofun

theorem removes (h : w.Owned) (hheld : w.Holds (.conn i) id) (gone : Bool) :
    ((if gone then w.removeDir id else w).setConn i .idle).Owned := by
  have hfree : ∀ {v : World n}, (∀ g id', v.Holds g id' → w.Holds g id') → ∀ g id',
      (v.setConn i .idle).Holds g id' → w.Holds g id' ∧ id' ≠ id := by
    intro v hv g id' hg
    rcases holds_setConn hg with ⟨-, hidle⟩ | ⟨hne, hold⟩
    · exact nomatch hidle
    · exact ⟨hv g id' hold, fun heq => hne (h.exclusive g (.conn i) id (heq ▸ hv g id' hold) hheld)⟩
  cases gone with
  | false => exact h.setConn nofun
  | true =>
    refine h.mono h.ids (removeDir_names_nodup h.names) h.cleaner fun g id' hg => ?_
    obtain ⟨hold, hne⟩ := hfree (fun g _ hg => by cases g <;> exact hg) g id' hg
    exact ⟨hold, onDisk_removeDir hne⟩

theorem finishes (h : w.Owned) {t : StoredTransfer} {row : StoredTransfer}
    (hrow : w.findTransfer t.id = some row) : (w.finish i t).Owned := by
  have hheld : w.Holds .registry t.id := ⟨row, Rows.lookup_eq_some hrow⟩
  rw [World.finish, hrow]
  have hregistry : ∀ id', (∃ r ∈ w.transfers.filter (·.id ≠ t.id), r.id = id') →
      w.Holds .registry id' ∧ id' ≠ t.id := by
    rintro id' ⟨r, hr, rfl⟩
    exact ⟨⟨r, (List.mem_filter.1 hr).1, rfl⟩, of_decide_eq_true (List.mem_filter.1 hr).2⟩
  refine h.passes t.id (.conn i) (h.ids.sublist (List.filter_sublist.map _)) h.names h.cleaner
    (h.onDisk _ _ hheld) (fun _ hon => hon) (fun g id' hne hg => ?_) fun g hg => ?_
  · rcases holds_setConn hg with ⟨-, hdir⟩ | ⟨-, hold⟩
    · exact absurd (Option.some.inj hdir).symm hne
    · cases g with
      | registry => exact (hregistry id' hold).1
      | conn j => exact hold
      | cleaner => exact hold
  · rcases holds_setConn hg with ⟨hconn, -⟩ | ⟨-, hold⟩
    · exact hconn
    · cases g with
      | registry => exact absurd rfl (hregistry t.id hold).2
      | conn j => exact absurd (h.exclusive (.conn j) .registry t.id hold hheld) nofun
      | cleaner => exact absurd (h.exclusive .cleaner .registry t.id hold hheld) nofun

/-- What expires passes from the registry to the cleanup thread. -/
theorem expires (h : w.Owned) (now : Time) : (w.expire now).Owned := by
  simp only [World.expire, expireLoop_eq]
  -- who had what somebody has now
  have hbefore : ∀ (g : Holder n) id', World.Holds { w with
      reserved := w.reserved - ((w.transfers.filter (·.expired now)).map (·.reservedBytes)).sum
      transfers := w.transfers.filter (!·.expired now)
      cleaner := (w.transfers.filter (·.expired now)).map (·.id) } g id' →
      (w.Holds g id' ∧ g ≠ .cleaner ∧ ∀ r ∈ w.transfers, r.id = id' → g = .registry →
        r.expired now = false) ∨
      (g = .cleaner ∧ w.Holds .registry id' ∧ ∀ r ∈ w.transfers, r.id = id' → r.expired now = true) := by
    intro g id' hg
    cases g with
    | registry =>
      obtain ⟨r, hr, rfl⟩ := hg
      obtain ⟨hmem, hkept⟩ := List.mem_filter.1 hr
      refine .inl ⟨⟨r, hmem, rfl⟩, nofun, fun r' hr' hid _ => ?_⟩
      rw [List.inj_on_of_nodup_map h.ids hr' hmem hid]
      simpa using hkept
    | conn j => exact .inl ⟨hg, nofun, fun _ _ _ heq => nomatch heq⟩
    | cleaner =>
      obtain ⟨r, hr, rfl⟩ := List.mem_map.1 hg
      obtain ⟨hmem, hexpired⟩ := List.mem_filter.1 hr
      refine .inr ⟨rfl, ⟨r, hmem, rfl⟩, fun r' hr' hid => ?_⟩
      rw [List.inj_on_of_nodup_map h.ids hr' hmem hid]
      exact hexpired
  refine ⟨h.ids.sublist (List.filter_sublist.map _), h.names, h.ids.sublist (List.filter_sublist.map _),
    fun g id' hg => ?_, fun g g' id' hg hg' => ?_⟩
  · rcases hbefore g id' hg with ⟨hold, -⟩ | ⟨-, hold, -⟩
    · exact h.onDisk g id' hold
    · exact h.onDisk .registry id' hold
  · rcases hbefore g id' hg with ⟨hold, -, hkept⟩ | ⟨rfl, hold, hexpired⟩
    · rcases hbefore g' id' hg' with ⟨hold', -, -⟩ | ⟨rfl, hold', hexpired⟩
      · exact h.exclusive g g' id' hold hold'
      · obtain rfl := h.exclusive g .registry id' hold hold'
        obtain ⟨r, hr, hid⟩ := hold
        exact absurd (hexpired r hr hid) (by rw [hkept r hr hid rfl]; exact Bool.false_ne_true)
    · rcases hbefore g' id' hg' with ⟨hold', -, hkept⟩ | ⟨rfl, -, -⟩
      · obtain rfl := h.exclusive g' .registry id' hold' hold
        obtain ⟨r, hr, hid⟩ := hold
        exact absurd (hexpired r hr hid) (by rw [hkept r hr hid rfl]; exact Bool.false_ne_true)
      · rfl

theorem cleans (h : w.Owned) {rest : List Bytes} (hcleaner : w.cleaner = id :: rest) (gone : Bool) :
    World.Owned { (if gone then w.removeDir id else w) with cleaner := rest } := by
  have hnodup := h.cleaner
  rw [hcleaner, List.nodup_cons] at hnodup
  have hheld : w.Holds .cleaner id := by
    show id ∈ w.cleaner
    rw [hcleaner]
    exact List.mem_cons_self
  have hfree : ∀ g id', World.Holds { w with cleaner := rest } g id' → w.Holds g id' ∧ id' ≠ id := by
    intro g id' hg
    cases g with
    | registry => exact ⟨hg, fun heq => nomatch h.exclusive .registry .cleaner id (heq ▸ hg) hheld⟩
    | conn j => exact ⟨hg, fun heq => nomatch h.exclusive (.conn j) .cleaner id (heq ▸ hg) hheld⟩
    | cleaner =>
      refine ⟨?_, fun heq => hnodup.1 (heq ▸ hg)⟩
      show id' ∈ w.cleaner
      rw [hcleaner]
      exact List.mem_cons_of_mem _ hg
  cases gone with
  | false => exact h.mono h.ids h.names hnodup.2 fun g id' hg => ⟨(hfree g id' hg).1, fun hon => hon⟩
  | true =>
    refine h.mono h.ids (removeDir_names_nodup h.names) hnodup.2 fun g id' hg => ?_
    obtain ⟨hold, hne⟩ := hfree g id' (by cases g <;> exact hg)
    exact ⟨hold, onDisk_removeDir hne⟩

theorem restarts (h : w.Owned) (now : Time) (age : Bytes → Time)
    (left : Bytes → Option (List FileName)) : (w.restart now age left).Owned := by
  simp only [World.restart, restoreTransfers_eq now age left h.names]
  have hid : ∀ t ∈ w.disk.filterMap (·.restored now age),
      ∃ d ∈ w.disk.filterMap (·.kept now age left), d.name = t.id := by
    intro t ht
    obtain ⟨d, hd, hrestored⟩ := List.mem_filterMap.1 ht
    have hkept : d.kept now age left = some d := by rw [Directory.kept, hrestored]; rfl
    exact ⟨d, List.mem_filterMap.2 ⟨d, hd, hkept⟩, (Directory.restored_id hrestored).symm⟩
  refine ⟨h.names.sublist (Rows.keys_filterMap Directory.restored_id w.disk),
    h.names.sublist (Rows.keys_filterMap (fun h => (Directory.of_kept h).1) w.disk),
    List.nodup_nil, fun g id' hg => ?_, fun g g' id' hg hg' => ?_⟩
  · cases g with
    | registry =>
      obtain ⟨t, ht, rfl⟩ := hg
      exact hid t ht
    | conn j => exact nomatch hg
    | cleaner => exact nomatch hg
  · cases g with
    | registry =>
      cases g' with
      | registry => rfl
      | conn j => exact nomatch hg'
      | cleaner => exact nomatch hg'
    | conn j => exact nomatch hg
    | cleaner => exact nomatch hg

/-- Whoever confirmed a download is confirming a registered transfer. -/
theorem effect {e : Event n} (h : w.Owned) (he : Effect quota w e w')
    (hregistered : ∀ i t, w.conns i = .confirmed t → (w.findTransfer t.id).isSome) :
    w'.Owned := by
  cases he with
  | keep => exact h
  | moves hsame => exact h.setConn fun id hid => hsame.dir ▸ hid
  | writes hid hsame hf =>
    exact (h.updateDir hf.name).setConn fun id hid => hsame.dir ▸ hid
  | reserves hi hbytes hroom => exact (h.withReserved _).setConn nofun
  | makes hi hnew => exact h.makes hnew
  | @registers e i id header bytes received now hi =>
    have hdir : (w.conns i).dir = some id := by rw [hi]; rfl
    exact h.registers (t := ⟨id, header, now, storageCost header bytes.length, false⟩) hdir
  | @aborts e i dir reserve hi =>
    refine (h.withReserved (w.reserved - reserve)).setConn fun id hid => ?_
    show (w.conns i).dir = some id
    rw [hi]
    cases dir with
    | none => exact nomatch hid
    | some id' => exact hid
  | @removes e i dir gone hi =>
    have hheld : w.Holds (.conn i) dir := by
      show (w.conns i).dir = some dir
      rw [hi]
      rfl
    exact h.removes hheld gone
  | claims hi ht hfree => exact (h.setDownloading true).setConn nofun
  | @finishes i t hi =>
    obtain ⟨row, hrow⟩ := Option.isSome_iff_exists.1 (hregistered i t hi)
    exact h.finishes hrow
  | releases hi => exact (h.setDownloading false).setConn nofun
  | expires hcleaner => exact h.expires _
  | cleanerWrites hdir => exact h.updateDir (rewrites_unlink .idle [] _).name
  | cleans gone hcleaner => exact h.cleans hcleaner gone
  | restarts => exact h.restarts _ _ _

end World.Owned

end

/-! ## Who downloads a transfer -/

namespace World

/-- A transfer is marked as downloading exactly when a connection downloads it, and that is one only. -/
structure Downloads (w : World n) : Prop where
  claimed : ∀ i id, (w.conns i).download = some id → ∃ t ∈ w.transfers, t.id = id ∧ t.downloading = true
  alone : ∀ i j id, (w.conns i).download = some id → (w.conns j).download = some id → i = j
  busy : ∀ t ∈ w.transfers, t.downloading = true → ∃ i, (w.conns i).download = some t.id

end World

section

variable {quota : ℕ} {w w' : World n} {i : Fin n} {c : Conn} {id : Bytes}

theorem download_setConn_of_eq (hsame : c.download = (w.conns i).download) (j : Fin n) :
    ((w.setConn i c).conns j).download = (w.conns j).download := by
  by_cases hj : j = i
  · rw [hj, setConn_conns_self, hsame]
  · rw [setConn_conns_of_ne hj]

namespace World.Downloads

/-- Neither the downloads nor the registered transfers change. -/
theorem congr (h : w.Downloads) (htransfers : w'.transfers = w.transfers)
    (hconns : ∀ j, (w'.conns j).download = (w.conns j).download) : w'.Downloads where
  claimed i id hi := by
    rw [htransfers]
    exact h.claimed i id (hconns i ▸ hi)
  alone i j id hi hj := h.alone i j id (hconns i ▸ hi) (hconns j ▸ hj)
  busy t ht hbusy := by
    rw [htransfers] at ht
    obtain ⟨i, hi⟩ := h.busy t ht hbusy
    exact ⟨i, (hconns i).trans hi⟩

theorem registers (h : w.Downloads) (howned : w.Owned) {t : StoredTransfer}
    (hdir : (w.conns i).dir = some t.id) (hdownload : (w.conns i).download = none)
    (hfree : t.downloading = false) :
    (({ w with transfers := w.transfers.filter (·.id ≠ t.id) ++ [t] } : World n).setConn i
      .idle).Downloads := by
  have hconns : ∀ j, (Function.update w.conns i .idle j).download = (w.conns j).download := fun j =>
    download_setConn_of_eq (c := .idle) hdownload.symm j
  refine ⟨fun j id hj => ?_, fun j k id hj hk => h.alone j k id (hconns j ▸ hj) (hconns k ▸ hk),
    fun r hr hbusy => ?_⟩
  · obtain ⟨r, hr, rfl, hbusy⟩ := h.claimed j id (hconns j ▸ hj)
    refine ⟨r, List.mem_append_left _ (List.mem_filter.2 ⟨hr, decide_eq_true fun heq => ?_⟩), rfl, hbusy⟩
    exact nomatch howned.exclusive .registry (.conn i) t.id ⟨r, hr, heq⟩ hdir
  · rcases List.mem_append.1 hr with hold | hlast
    · obtain ⟨j, hj⟩ := h.busy r (List.mem_filter.1 hold).1 hbusy
      exact ⟨j, (hconns j).trans hj⟩
    · rw [List.mem_singleton.1 hlast, hfree] at hbusy
      exact nomatch hbusy

theorem claims (h : w.Downloads) (howned : w.Owned) {t : StoredTransfer} (hi : w.conns i = .idle)
    (ht : w.findTransfer t.id = some t) (hfree : t.downloading = false) (hc : c.download = some t.id) :
    ((w.setDownloading t.id true).setConn i c).Downloads := by
  obtain ⟨hmem, -⟩ := Rows.lookup_eq_some ht
  have hnobody : ∀ j, (w.conns j).download ≠ some t.id := by
    intro j hj
    obtain ⟨r, hr, hid, hbusy⟩ := h.claimed j t.id hj
    rw [List.inj_on_of_nodup_map howned.ids hr hmem hid, hfree] at hbusy
    exact nomatch hbusy
  have hconn : ∀ j id, (((w.setDownloading t.id true).setConn i c).conns j).download = some id →
      (j = i ∧ id = t.id) ∨ (j ≠ i ∧ (w.conns j).download = some id) := by
    intro j id hj
    by_cases heq : j = i
    · rw [heq, setConn_conns_self, hc] at hj
      exact .inl ⟨heq, (Option.some.inj hj).symm⟩
    · rw [setConn_conns_of_ne heq] at hj
      exact .inr ⟨heq, hj⟩
  refine ⟨fun j id hj => ?_, fun j k id hj hk => ?_, fun r hr hbusy => ?_⟩
  · rcases hconn j id hj with ⟨-, rfl⟩ | ⟨-, hold⟩
    · exact ⟨{ t with downloading := true }, List.mem_map.2 ⟨t, hmem, if_pos rfl⟩, rfl, rfl⟩
    · obtain ⟨r, hr, rfl, hbusy⟩ := h.claimed j id hold
      refine ⟨r, List.mem_map.2 ⟨r, hr, if_neg fun heq : r.id = t.id => hnobody j (heq ▸ hold)⟩, rfl, hbusy⟩
  · rcases hconn j id hj with ⟨rfl, rfl⟩ | ⟨-, hold⟩
    · rcases hconn k _ hk with ⟨rfl, -⟩ | ⟨-, hold⟩
      · rfl
      · exact absurd hold (hnobody k)
    · rcases hconn k id hk with ⟨rfl, rfl⟩ | ⟨-, hold'⟩
      · exact absurd hold (hnobody j)
      · exact h.alone j k id hold hold'
  · obtain ⟨r', hr', rfl⟩ := List.mem_map.1 hr
    by_cases hid : r'.id = t.id
    · refine ⟨i, ?_⟩
      rw [setConn_conns_self, if_pos hid, hc, ← hid]
    · rw [if_neg hid] at hbusy ⊢
      obtain ⟨j, hj⟩ := h.busy r' hr' hbusy
      have hne : j ≠ i := by
        rintro rfl
        rw [hi] at hj
        exact nomatch hj
      exact ⟨j, by rw [setConn_conns_of_ne hne]; exact hj⟩

/-- A connection ends its download, and what it downloaded is no longer there or no longer marked. -/
theorem ends (h : w.Downloads) (hi : (w.conns i).download = some id) (hc : c.download = none)
    {transfers : List StoredTransfer} {reserved : ℕ}
    (hkept : ∀ r ∈ w.transfers, r.id ≠ id → r ∈ transfers)
    (hmarked : ∀ r ∈ transfers, r.downloading = true → r ∈ w.transfers ∧ r.id ≠ id) :
    (({ w with transfers := transfers, reserved := reserved } : World n).setConn i c).Downloads := by
  have hother : ∀ j id', ((({ w with transfers := transfers, reserved := reserved } : World n).setConn i
      c).conns j).download = some id' → j ≠ i ∧ (w.conns j).download = some id' := by
    intro j id' hj
    by_cases heq : j = i
    · rw [heq, setConn_conns_self, hc] at hj
      exact nomatch hj
    · rw [setConn_conns_of_ne heq] at hj
      exact ⟨heq, hj⟩
  refine ⟨fun j id' hj => ?_, fun j k id' hj hk => ?_, fun r hr hbusy => ?_⟩
  · obtain ⟨hne, hold⟩ := hother j id' hj
    obtain ⟨r, hr, rfl, hbusy⟩ := h.claimed j id' hold
    exact ⟨r, hkept r hr fun heq => hne (h.alone j i id (heq ▸ hold) hi), rfl, hbusy⟩
  · exact h.alone j k id' (hother j id' hj).2 (hother k id' hk).2
  · obtain ⟨hold, hne⟩ := hmarked r hr hbusy
    obtain ⟨j, hj⟩ := h.busy r hold hbusy
    have hji : j ≠ i := by
      rintro rfl
      exact hne (Option.some.inj (hj.symm.trans hi))
    exact ⟨j, by rw [setConn_conns_of_ne hji]; exact hj⟩

theorem effect {e : Event n} (h : w.Downloads) (howned : w.Owned) (he : Effect quota w e w') :
    w'.Downloads := by
  cases he with
  | keep => exact h
  | moves hsame => exact h.congr rfl (download_setConn_of_eq hsame.download)
  | writes hid hsame hf => exact h.congr rfl (download_setConn_of_eq hsame.download)
  | reserves hi hbytes hroom => exact h.congr rfl (download_setConn_of_eq (by rw [hi]; rfl))
  | makes hi hnew => exact h.congr rfl (download_setConn_of_eq (by rw [hi]; rfl))
  | @registers e i id header bytes received now hi =>
    exact h.registers howned (t := ⟨id, header, now, storageCost header bytes.length, false⟩)
      (by rw [hi]; rfl) (by rw [hi]; rfl) rfl
  | @aborts e i dir reserve hi =>
    refine h.congr rfl (download_setConn_of_eq ?_)
    rw [hi]
    cases dir <;> rfl
  | @removes e i dir gone hi =>
    have hidle : Conn.idle.download = (w.conns i).download := by rw [hi]; rfl
    cases gone <;> exact h.congr rfl (download_setConn_of_eq hidle)
  | claims hi ht hfree => exact h.claims howned hi ht hfree rfl
  | @finishes i t hi =>
    have hdownload : (w.conns i).download = some t.id := by rw [hi]; rfl
    obtain ⟨row, hrow, hid, -⟩ := h.claimed i t.id hdownload
    have hfind : w.findTransfer t.id = some row := by
      rw [← hid]
      exact Rows.lookup_of_mem howned.ids hrow
    rw [World.finish, hfind]
    refine h.ends hdownload rfl (fun r hr hne => List.mem_filter.2 ⟨hr, decide_eq_true hne⟩) ?_
    intro r hr _
    exact ⟨(List.mem_filter.1 hr).1, of_decide_eq_true (List.mem_filter.1 hr).2⟩
  | @releases i id hi =>
    refine h.ends (by rw [hi]; rfl) rfl (fun r hr hne => List.mem_map.2 ⟨r, hr, if_neg hne⟩) ?_
    intro r hr hbusy
    obtain ⟨r', hr', rfl⟩ := List.mem_map.1 hr
    by_cases hid : r'.id = id
    · rw [if_pos hid] at hbusy
      exact nomatch hbusy
    · rw [if_neg hid]
      exact ⟨hr', hid⟩
  | @expires now hcleaner =>
    simp only [World.expire, expireLoop_eq]
    refine ⟨fun j id hj => ?_, h.alone, fun r hr hbusy => h.busy r (List.mem_filter.1 hr).1 hbusy⟩
    obtain ⟨r, hr, hid, hbusy⟩ := h.claimed j id hj
    exact ⟨r, List.mem_filter.2 ⟨hr, by simp [StoredTransfer.expired, hbusy]⟩, hid, hbusy⟩
  | cleanerWrites hdir => exact h.congr rfl fun _ => rfl
  | cleans gone hcleaner => cases gone <;> exact h.congr rfl fun _ => rfl
  | restarts =>
    simp only [World.restart, restoreTransfers_eq _ _ _ howned.names]
    refine ⟨nofun, fun _ _ _ hi => (nomatch hi), fun r hr hbusy => ?_⟩
    obtain ⟨d, -, hd⟩ := List.mem_filterMap.1 hr
    rw [Directory.restored_downloading hd] at hbusy
    exact nomatch hbusy

end World.Downloads

end

/-! ## Runs -/

/-- What `header.bin` says the transfer takes up is what its upload had reserved. -/
def Directory.Faithful (d : Directory) : Prop :=
  ∀ bytes header, d.header = some bytes → deserializeFileHeader bytes = some header →
    d.reservation = storageCost header bytes.length

/-- What a start leaves of a directory still says no more than was reserved for it. -/
theorem Directory.Faithful.kept {d d' : Directory} (h : d.Faithful) {now : Time} {age : Bytes → Time}
    {left : Bytes → Option (List FileName)} (hkept : d.kept now age left = some d') : d'.Faithful := by
  obtain ⟨-, hreservation, hheader⟩ := Directory.of_kept hkept
  intro bytes header hbytes hdecoded
  rw [hreservation]
  rcases hheader with hheader | hheader
  · exact h bytes header (hheader ▸ hbytes) hdecoded
  · exact nomatch hheader.symm.trans hbytes

namespace World

/-- The server has just started on a disk that an earlier run left. -/
def Init (w : World n) : Prop :=
  ∃ (disk : List Directory) (now : Time) (age : Bytes → Time) (left : Bytes → Option (List FileName)),
    (disk.map (·.name)).Nodup ∧ (∀ d ∈ disk, d.Faithful) ∧
      w = ({ disk := disk } : World n).restart now age left

def Step (quota : ℕ) (w : World n) (e : Event n) (w' : World n) : Prop :=
  ∃ replies, w.next quota e = some (w', replies)

structure Orderly (w : World n) : Prop where
  owned : w.Owned
  downloads : w.Downloads
  sound : ∀ i, (w.conns i).Sound

end World

section

variable {quota : ℕ} {w w' : World n} {i : Fin n} {c : Conn}

theorem sound_setConn (h : ∀ j, (w.conns j).Sound) (hc : c.Sound) (j : Fin n) :
    ((w.setConn i c).conns j).Sound := by
  by_cases hj : j = i
  · rw [hj, setConn_conns_self]
    exact hc
  · rw [setConn_conns_of_ne hj]
    exact h j

theorem sound_effect {e : Event n} (h : ∀ j, (w.conns j).Sound) (he : Effect quota w e w') :
    ∀ j, (w'.conns j).Sound := by
  cases he with
  | keep => exact h
  | moves hsame => exact sound_setConn h (hsame.sound (h _))
  | writes hid hsame hf => exact sound_setConn h (hsame.sound (h _))
  | reserves hi hbytes hroom => exact sound_setConn h hbytes
  | @makes e i id header bytes hi hnew =>
    have hbytes := h i
    rw [hi] at hbytes
    exact sound_setConn h hbytes
  | registers hi => exact sound_setConn h trivial
  | @aborts e i dir reserve hi => exact sound_setConn h (by cases dir <;> trivial)
  | removes gone hi => cases gone <;> exact sound_setConn h trivial
  | claims hi ht hfree => exact sound_setConn h trivial
  | finishes hi =>
    unfold World.finish
    split <;> exact sound_setConn h trivial
  | releases hi => exact sound_setConn h trivial
  | expires hcleaner => exact h
  | cleanerWrites hdir => exact h
  | cleans gone hcleaner => cases gone <;> exact h
  | restarts => exact fun _ => trivial

theorem World.Orderly.effect {e : Event n} (h : w.Orderly) (he : Effect quota w e w') : w'.Orderly where
  owned := h.owned.effect he fun i t hi => by
    obtain ⟨row, hrow, hid, -⟩ := h.downloads.claimed i t.id (by rw [hi]; rfl)
    exact Rows.lookup_isSome.2 ⟨row, hrow, hid⟩
  downloads := h.downloads.effect h.owned he
  sound := sound_effect h.sound he

theorem World.Orderly.init (h : w.Init) : w.Orderly := by
  obtain ⟨disk, now, age, left, hnames, -, rfl⟩ := h
  have hstart : ({ disk := disk } : World n).Orderly := by
    refine ⟨⟨List.nodup_nil, hnames, List.nodup_nil, fun g id hg => ?_, fun g g' id hg => ?_⟩,
      ⟨nofun, fun _ _ _ hi => (nomatch hi), fun _ hr => (nomatch hr)⟩, fun _ => trivial⟩
    · cases g <;> exact nomatch hg
    · cases g <;> exact nomatch hg
  have hrestart : Effect 0 ({ disk := disk } : World n) (.restart now age left) _ := .restarts
  exact hstart.effect hrestart

theorem World.orderly (h : Reach.Reachable World.Init (World.Step quota) w) : w.Orderly :=
  h.invariant (P := World.Orderly) (fun _ => .init) fun _ _ _ hw ⟨_, hnext⟩ => hw.effect (effect_next hnext)

end

end PqSuite.FileServer
